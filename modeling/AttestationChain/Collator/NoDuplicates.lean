import AttestationChain.Collator.Pallet

/-!
# Collator/NoDuplicates — when no collator is named twice

`Apart` — the invulnerables and the candidates, one behind the other, name no account twice — is
kept by everything the pallet does but one call: `set_invulnerables` takes its list as it comes,
where genesis asserts it is duplicate-free and registration asks whether the account is on it.  So a
run keeps the two apart exactly if every list governance sets does (`apart_run_iff`), and then every
session it hands out is duplicate-free.
-/

namespace Collator

open Runs

variable {AccountId ValidatorId Ledger : Type} [DecidableEq AccountId]
  (c : Config AccountId ValidatorId Ledger)

/-- **No account twice** among invulnerables and candidates. -/
def Apart (s : State AccountId Ledger) : Prop := (s.invulnerables ++ s.candidateIds).Nodup

/-- **A list governance sets is apart** from the candidates of the moment, and duplicate-free. -/
def SetsApart (s : State AccountId Ledger) : Step AccountId Ledger → Prop
  | .call origin (.setInvulnerables new) =>
    c.updateOrigin origin = true → (new ++ s.candidateIds).Nodup
  | _ => True

/-- What genesis accepts is apart: the invulnerables are asserted to be, and there are no
candidates. -/
theorem apart_build {g : GenesisConfig AccountId} {ledger : Ledger} {s : State AccountId Ledger}
    (h : g.build c ledger = some s) : Apart s := by
  rw [GenesisConfig.build] at h
  split_ifs at h with hdup
  obtain rfl := Option.some.inj h
  have hnodup : g.invulnerables.Nodup :=
    List.dedup_eq_self.1 ((List.dedup_sublist _).eq_of_length hdup)
  simpa [Apart, State.candidateIds] using hnodup

/-- **A step keeps the two apart just if the list it sets is.** -/
theorem apart_step_iff (s : State AccountId Ledger) (a : Step AccountId Ledger) (hs : Apart s) :
    Apart (step c s a) ↔ SetsApart c s a := by
  rcases step_cases c s a with ⟨hinv, hids⟩ | ⟨origin, new, rfl, hup, hinv, hids⟩ |
    ⟨who, rfl, hnotinv, hnotcand, hinv, hids⟩
  · have hkept : Apart (step c s a) := by
      rw [Apart, hinv]
      exact (List.Sublist.append_left hids _).nodup hs
    refine ⟨fun _ => ?_, fun _ => hkept⟩
    -- A list set without the origin for it is not set.
    rcases a with ⟨origin, new | _ | _ | _ | _⟩ | _ | _ | _ | _ <;> try trivial
    intro hup
    have hset : (step c s (.call origin (.setInvulnerables new))).invulnerables = new ∧
        (step c s (.call origin (.setInvulnerables new))).candidateIds = s.candidateIds := by
      simp [step, dispatch, setInvulnerables, ensureUpdateOrigin, hup, State.depositEvent,
        State.candidateIds]
    rwa [Apart, hset.1, hset.2] at hkept
  · rw [Apart, hinv, hids]
    exact ⟨fun h _ => h, fun h => h hup⟩
  · refine ⟨fun _ => trivial, fun _ => ?_⟩
    rw [Apart, hinv, hids, ← List.append_assoc]
    exact List.nodup_append.2 ⟨hs, List.nodup_singleton who, by
      rintro w hw v hv rfl
      rw [List.mem_singleton.1 hv] at hw
      exact (List.mem_append.1 hw).elim hnotinv hnotcand⟩

/-- A session drawn from lists that are apart names no account twice. -/
theorem nodup_newSession {s : State AccountId Ledger} (hs : Apart s) :
    (newSession c s).2.Nodup := by
  obtain ⟨hinv, -, -, hret⟩ := kickStaleCandidates_frame c s s.candidates
  rw [newSession, assembleCollators, hinv]
  exact (List.Sublist.append_left hret _).nodup hs

/-- **The collator set never contains an account twice.**  In every run from an accepted genesis the
invulnerables and the candidates stay apart, and each duplicate-free, if and only if every list
governance sets is duplicate-free and names no candidate; and then no session names an account
twice. -/
theorem sessions_nodup {g : GenesisConfig AccountId} {ledger : Ledger} {s₀ : State AccountId Ledger}
    (hbuild : g.build c ledger = some s₀) (tr : List (Step AccountId Ledger)) :
    (Guarded (step c) (SetsApart c) s₀ tr ↔
      ∀ pre suf, tr = pre ++ suf → Apart (run (step c) s₀ pre)) ∧
    (Guarded (step c) (SetsApart c) s₀ tr →
      ∀ pre suf, tr = pre ++ .newSession :: suf →
      (newSession c (run (step c) s₀ pre)).2.Nodup) := by
  have hiff : Guarded (step c) (SetsApart c) s₀ tr ↔
      ∀ pre suf, tr = pre ++ suf → Apart (run (step c) s₀ pre) :=
    guarded_iff (J := fun _ => True) (fun _ _ _ => trivial)
      (fun s a _ hs => apart_step_iff c s a hs)
      trivial (apart_build c hbuild)
  exact ⟨hiff, fun h pre suf htr => nodup_newSession c (hiff.1 h pre _ htr)⟩

/-- A genesis: one invulnerable, and room for candidates. -/
def plainGenesis : GenesisConfig ℕ := ⟨[1], 10, 20⟩

/-- The storage it starts from. -/
def plainStart : State ℕ Unit :=
  ⟨0, [], (), [1], [], fun _ => none, 20, 10⟩

/-- Account `3` registers, governance replaces the invulnerable, and the session names both once. -/
theorem sessions_nodup_plain :
    (newSession (plainConfig 600) (run (step (plainConfig 600)) plainStart
      [.call (.signed 3) .registerAsCandidate, .call .root (.setInvulnerables [2])])).2.Nodup := by
  have hbuild : plainGenesis.build (plainConfig 600) () = some plainStart := rfl
  exact (sessions_nodup (plainConfig 600) hbuild
    [.call (.signed 3) .registerAsCandidate, .call .root (.setInvulnerables [2]), .newSession]).2
    ⟨trivial, fun _ => by decide, trivial, trivial⟩ _ [] rfl

/-- Governance appoints a candidate: the next session names it twice. -/
theorem session_names_twice :
    ¬ ∀ (c : Config ℕ ℕ Unit) (g : GenesisConfig ℕ) (ledger : Unit) (s₀ : State ℕ Unit),
      g.build c ledger = some s₀ → ∀ tr pre suf, tr = pre ++ .newSession :: suf →
        (newSession c (run (step c) s₀ pre)).2.Nodup := by
  intro h
  have hnodup := h (plainConfig 600) plainGenesis () plainStart rfl _
    [.call (.signed 3) .registerAsCandidate, .call .root (.setInvulnerables [3])] [] rfl
  exact absurd hnodup (by decide)

end Collator
